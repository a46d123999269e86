import Mathlib.Logic.Relation
import StubInference.Attribute
import StubInference.Class.Plan
import StubInference.Proofs.Value.Gathering

/-!
# How the heap grows

An analysis changes the heap in a few ways only: it adds objects, writes tables of names, and stores
attributes. So what has been recorded about a frame, a function or the body of a class stays, and
what an instance has gathered is never lost.

## Main definitions

* `Heap.Builds` — a class as it is built
* `Heap.Change` — everything that can happen to the heap in one go
* `Heap.Grows` — what comes of it in the end
* `Frame.Sound` — a frame that has finished and created interpreted functions only

## Main results

* `Heap.Grows.functionAt`, `Heap.Grows.frameAt` — functions and frames stay as they are
* `Heap.Grows.classAt` — of a class only the members change
* `Heap.Grows.instanceAt` — an instance keeps the values that its attributes hold
-/

namespace StubInference

/-- A frame that has finished and has created interpreted functions only. -/
structure Frame.Sound (heap : Heap) (frame : Frame) : Prop where
  finished : frame.finished = true
  functions : ∀ id ∈ frame.functions, heap.isInterpreted id = true

namespace Heap

/-- The class that a class statement makes of the names its body bound. -/
def statementClass (heap : Heap) (plan : ClassPlan) (frame : Frame) : ClassInfo :=
  .built plan.name plan.bases (frame.finalLocals.mapValues Variable.joined)
    (heap.resolveMetaclass plan.keywords plan.bases)
    ⟨plan.keywords, frame.functions, frame.classes⟩

/-- A class as it is built: by a call of `type` or of its hook, or by a class statement whose body
has run. -/
inductive Builds (heap : Heap) : ClassInfo → Prop
  | typeCall (args : Args) {info : ClassInfo} (asked : heap.typeCallClass? args = some info) :
      Builds heap info
  | classStatement (plan : ClassPlan) (id : FrameId) (run : id.index < heap.frames.size) :
      Builds heap (heap.statementClass plan (heap.frameAt id))

/-- One change of the heap. Interpreted functions, instances of built classes, tables, finished
frames and classes are added, tables are written, and attributes are stored. -/
inductive Change (heap : Heap) : Heap → Prop
  | addFunction (function : InterpretedFunction) :
      Change heap (heap.addFunction (.interpreted function)).2
  | instantiate (cls : ClassId) : Change heap (heap.instantiate cls).2
  | addScope (names : NameMap Variable) : Change heap (heap.addScope names).2
  | modifyScope (id : ScopeId) (change : NameMap Variable → NameMap Variable) :
      Change heap (heap.modifyScope id change)
  | setAttributeOn (name : String) (v : Variable) (a : Value) :
      Change heap (heap.setAttributeOn name v a)
  | addFrame (frame : Frame) (sound : frame.Sound heap) : Change heap (heap.addFrame frame).2
  | addClass (info : ClassInfo) (builds : heap.Builds info) : Change heap (heap.addClass info).2

/-- One heap comes of another one by any number of changes. -/
def Grows : Heap → Heap → Prop := Relation.ReflTransGen Change

/-! ## Sizes -/

/-- A heap has at least the objects of another one. -/
structure SizeLE (heap heap' : Heap) : Prop where
  classes : heap.classes.size ≤ heap'.classes.size
  functions : heap.functions.size ≤ heap'.functions.size
  instances : heap.instances.size ≤ heap'.instances.size
  frames : heap.frames.size ≤ heap'.frames.size
  scopes : heap.scopes.size ≤ heap'.scopes.size

variable {heap heap' heap'' : Heap}

namespace SizeLE

theorem refl (heap : Heap) : heap.SizeLE heap := 
  ⟨Nat.le_refl _, Nat.le_refl _, Nat.le_refl _, Nat.le_refl _, Nat.le_refl _⟩

theorem trans (h : heap.SizeLE heap') (h' : heap'.SizeLE heap'') : heap.SizeLE heap'' where
  classes := Nat.le_trans h.classes h'.classes
  functions := Nat.le_trans h.functions h'.functions
  instances := Nat.le_trans h.instances h'.instances
  frames := Nat.le_trans h.frames h'.frames
  scopes := Nat.le_trans h.scopes h'.scopes

end SizeLE

/-- An entry of a table stays when the table gets longer. -/
theorem getD_push {α : Type} {objects : Array α} {object fallback : α} {n : Nat}
    (h : n < objects.size) : (objects.push object).getD n fallback = objects.getD n fallback := by
  rw [Array.getD_eq_getD_getElem?, Array.getD_eq_getD_getElem?, Array.getElem?_push,
    if_neg (by omega)]

/-- An entry of a table is changed where the table is. -/
theorem getD_modify {α : Type} {objects : Array α} {change : α → α} {fallback : α} {m n : Nat}
    (h : n < objects.size) : (objects.modify m change).getD n fallback =
      if m = n then change (objects.getD n fallback) else objects.getD n fallback := by
  rw [Array.getD_eq_getD_getElem?, Array.getD_eq_getD_getElem?, Array.getElem?_modify,
    Array.getElem?_eq_getElem h]
  split <;> rfl

/-- There is no class behind the last one. -/
theorem classAt_of_size_le {cls : ClassId} (h : heap.classes.size ≤ cls.index) :
    heap.classAt cls = default := by
  rw [classAt, Array.getD_eq_getD_getElem?, Array.getElem?_eq_none h]
  rfl

/-- A built class is recorded. -/
theorem lt_of_isBuilt {cls : ClassId} (h : heap.isBuilt cls = true) :
    cls.index < heap.classes.size := by
  by_contra absent
  rw [isBuilt, classAt_of_size_le (Nat.le_of_not_lt absent)] at h
  cases h

/-- An interpreted function is recorded. -/
theorem lt_of_functionAt {id : FunctionId} {function : InterpretedFunction}
    (h : heap.functionAt id = .interpreted function) : id.index < heap.functions.size := by
  by_contra absent
  rw [functionAt, Array.getD_eq_getD_getElem?,
    Array.getElem?_eq_none (Nat.le_of_not_lt absent)] at h
  cases h

theorem setAttributeOn_eq (heap : Heap) (name : String) (v : Variable) (a : Value) :
    heap.setAttributeOn name v a = heap ∨
      (∃ id, a = .instanceObject id ∧ heap.setAttributeOn name v a = heap.modifyInstance id
        fun inst => { inst with members := inst.members.upsert name v (·.mergeWith v) }) ∨
      ∃ cls, a = .classObject cls ∧ heap.isBuilt cls = true ∧
        heap.setAttributeOn name v a = heap.modifyClass cls
          fun info => { info with members := info.members.insert name v.joined } := by
  cases a with
  | instanceObject id => exact .inr (.inl ⟨id, rfl, rfl⟩)
  | classObject cls =>
    by_cases built : heap.isBuilt cls = true
    · exact .inr (.inr ⟨cls, rfl, built, by simp [setAttributeOn, built]⟩)
    · exact .inl (by simp [setAttributeOn, built])
  | _ => exact .inl rfl

/-- What a store on one value keeps, a store on a variable keeps. -/
theorem setAttribute_keeps {β : Type} {name : String} {v : Variable} (part : Heap → β)
    (keeps : ∀ heap a, part (heap.setAttributeOn name v a) = part heap) (heap : Heap)
    (object : Variable) : part (heap.setAttribute object name v) = part heap := by
  unfold setAttribute
  induction object.values generalizing heap with
  | nil => rfl
  | cons a rest ih => rw [List.foldl_cons, ih, keeps]

namespace Change

theorem sizeLE (h : heap.Change heap') : heap.SizeLE heap' := by
  cases h with
  | addFunction | addScope | addFrame | addClass =>
    constructor <;> simp [Heap.addFunction, Heap.addScope, Heap.addFrame, Heap.addClass]
  | modifyScope => constructor <;> simp [Heap.modifyScope]
  | instantiate cls =>
    unfold Heap.instantiate
    split
    · constructor <;> simp [Heap.addInstance]
    · exact .refl heap
  | setAttributeOn name v a =>
    rcases setAttributeOn_eq heap name v a with h | ⟨id, -, h⟩ | ⟨cls, -, -, h⟩ <;> rw [h]
    · exact .refl heap
    · constructor <;> simp [Heap.modifyInstance]
    · constructor <;> simp [Heap.modifyClass]

/-- The table of functions gets longer at most. -/
theorem functions (h : heap.Change heap') :
    heap'.functions = heap.functions ∨
      ∃ function, heap'.functions = heap.functions.push (.interpreted function) := by
  cases h with
  | addFunction function => exact .inr ⟨function, rfl⟩
  | addScope | addFrame | addClass | modifyScope => exact .inl rfl
  | instantiate cls =>
    unfold Heap.instantiate
    split <;> exact .inl rfl
  | setAttributeOn name v a =>
    rcases setAttributeOn_eq heap name v a with h | ⟨id, -, h⟩ | ⟨cls, -, -, h⟩ <;> rw [h] <;>
      exact .inl rfl

/-- The table of frames gets longer at most. -/
theorem frames (h : heap.Change heap') :
    heap'.frames = heap.frames ∨
      ∃ frame : Frame, frame.Sound heap ∧ heap'.frames = heap.frames.push frame := by
  cases h with
  | addFrame frame sound => exact .inr ⟨frame, sound, rfl⟩
  | addFunction | addScope | addClass | modifyScope => exact .inl rfl
  | instantiate cls =>
    unfold Heap.instantiate
    split <;> exact .inl rfl
  | setAttributeOn name v a =>
    rcases setAttributeOn_eq heap name v a with h | ⟨id, -, h⟩ | ⟨cls, -, -, h⟩ <;> rw [h] <;>
      exact .inl rfl

/-- The table of instances gets longer, or one of them gathers what is stored. -/
theorem instances (h : heap.Change heap') :
    heap'.instances = heap.instances ∨
      (∃ cls, heap'.instances = heap.instances.push ⟨cls, []⟩) ∨
      ∃ (n : Nat) (name : String) (v : Variable), heap'.instances = heap.instances.modify n
        fun inst => { inst with members := inst.members.upsert name v (·.mergeWith v) } := by
  cases h with
  | addFrame | addFunction | addScope | addClass | modifyScope => exact .inl rfl
  | instantiate cls =>
    unfold Heap.instantiate
    split
    · exact .inr (.inl ⟨cls, rfl⟩)
    · exact .inl rfl
  | setAttributeOn name v a =>
    rcases setAttributeOn_eq heap name v a with h | ⟨id, -, h⟩ | ⟨cls, -, -, h⟩ <;> rw [h]
    · exact .inl rfl
    · exact .inr (.inr ⟨id.index, name, v, rfl⟩)
    · exact .inl rfl

/-- The table of classes gets longer, or a built class takes another member. -/
theorem classes (h : heap.Change heap') :
    heap'.classes = heap.classes ∨
      (∃ info, heap.Builds info ∧ heap'.classes = heap.classes.push info) ∨
      ∃ (cls : ClassId) (name : String) (a : Value), heap.isBuilt cls = true ∧
        heap'.classes = heap.classes.modify cls.index
          fun info => { info with members := info.members.insert name a } := by
  cases h with
  | addFrame | addFunction | addScope | modifyScope => exact .inl rfl
  | addClass info builds => exact .inr (.inl ⟨info, builds, rfl⟩)
  | instantiate cls =>
    unfold Heap.instantiate
    split <;> exact .inl rfl
  | setAttributeOn name v a =>
    rcases setAttributeOn_eq heap name v a with h | ⟨id, -, h⟩ | ⟨cls, -, built, h⟩ <;> rw [h]
    · exact .inl rfl
    · exact .inl rfl
    · exact .inr (.inr ⟨cls, name, v.joined, built, rfl⟩)

/-- A class stays as it is, or takes another member if it was built. -/
theorem classAt (h : heap.Change heap') {id : ClassId} (hid : id.index < heap.classes.size) :
    heap'.classAt id = heap.classAt id ∨ heap.isBuilt id = true ∧
      ∃ (name : String) (a : Value), heap'.classAt id =
        { heap.classAt id with members := (heap.classAt id).members.insert name a } := by
  unfold Heap.isBuilt Heap.classAt
  rcases h.classes with same | ⟨info, -, pushed⟩ | ⟨cls, name, a, built, modified⟩
  · exact .inl (by rw [same])
  · exact .inl (by rw [pushed, getD_push hid])
  · rw [modified, getD_modify hid]
    by_cases hcls : cls.index = id.index
    · rw [if_pos hcls]
      rw [Heap.isBuilt, Heap.classAt, hcls] at built
      exact .inr ⟨built, name, a, rfl⟩
    · exact .inl (if_neg hcls)

/-- An instance stays as it is, or gathers what is stored. -/
theorem instanceAt (h : heap.Change heap') {id : InstanceId}
    (hid : id.index < heap.instances.size) :
    heap'.instanceAt id = heap.instanceAt id ∨ ∃ (name : String) (v : Variable),
      heap'.instanceAt id = { heap.instanceAt id with
        members := (heap.instanceAt id).members.upsert name v (·.mergeWith v) } := by
  unfold Heap.instanceAt
  rcases h.instances with same | ⟨cls, pushed⟩ | ⟨n, name, v, modified⟩
  · exact .inl (by rw [same])
  · exact .inl (by rw [pushed, getD_push hid])
  · rw [modified, getD_modify hid]
    split
    · exact .inr ⟨name, v, rfl⟩
    · exact .inl rfl

end Change

/-- What is stored keeps the values that an attribute held. -/
theorem get?_upsert_includes {names : NameMap Variable} {name : String} {v : Variable}
    (h : names.get? name = some v) (other : String) (w : Variable) :
    ∃ u, (names.upsert other w (·.mergeWith w)).get? name = some u ∧ u.Includes v := by
  unfold NameMap.upsert
  by_cases hname : other = name
  · subst hname
    rw [NameMap.get?_insert_self, h]
    exact ⟨_, rfl, Variable.includes_mergeWith_left v w⟩
  · rw [NameMap.get?_insert_of_ne _ _ hname]
    exact ⟨v, h, .refl v⟩

namespace Grows

@[refl] theorem refl (heap : Heap) : heap.Grows heap := Relation.ReflTransGen.refl

theorem trans (h : heap.Grows heap') (h' : heap'.Grows heap'') : heap.Grows heap'' :=
  Relation.ReflTransGen.trans h h'

theorem single (h : heap.Change heap') : heap.Grows heap' := Relation.ReflTransGen.single h

theorem setAttributeOn (values : List Value) (name : String) (v : Variable) :
    heap.Grows (values.foldl (fun heap a => heap.setAttributeOn name v a) heap) := by
  induction values generalizing heap with
  | nil => exact refl heap
  | cons a rest ih => exact (single (.setAttributeOn name v a)).trans ih

theorem setAttribute (object : Variable) (name : String) (v : Variable) :
    heap.Grows (heap.setAttribute object name v) := setAttributeOn object.values name v

theorem sizeLE (h : heap.Grows heap') : heap.SizeLE heap' := by
  induction h with
  | refl => exact .refl heap
  | tail _ change ih => exact ih.trans change.sizeLE

/-- A function stays as it is. -/
theorem functionAt (h : heap.Grows heap') {id : FunctionId}
    (hid : id.index < heap.functions.size) : heap'.functionAt id = heap.functionAt id := by
  induction h with
  | refl => rfl
  | @tail heap₁ heap₂ before change ih =>
    rw [← ih]
    unfold Heap.functionAt
    rcases change.functions with same | ⟨function, pushed⟩
    · rw [same]
    · rw [pushed, getD_push (Nat.lt_of_lt_of_le hid (sizeLE before).functions)]

theorem isInterpreted (h : heap.Grows heap') {id : FunctionId}
    (hid : heap.isInterpreted id = true) : heap'.isInterpreted id = true := by
  have known : id.index < heap.functions.size := by
    by_contra absent
    rw [Heap.isInterpreted, Heap.functionAt, Array.getD_eq_getD_getElem?,
      Array.getElem?_eq_none (Nat.le_of_not_lt absent)] at hid
    cases hid
  rwa [Heap.isInterpreted, h.functionAt known]

/-- A frame stays as it is. -/
theorem frameAt (h : heap.Grows heap') {id : FrameId} (hid : id.index < heap.frames.size) :
    heap'.frameAt id = heap.frameAt id := by
  induction h with
  | refl => rfl
  | @tail heap₁ heap₂ before change ih =>
    rw [← ih]
    unfold Heap.frameAt
    rcases change.frames with same | ⟨frame, -, pushed⟩
    · rw [same]
    · rw [pushed, getD_push (Nat.lt_of_lt_of_le hid (sizeLE before).frames)]

/-- Of a class only the members change, and those of a declared class do not. -/
theorem classAt (h : heap.Grows heap') {id : ClassId} (hid : id.index < heap.classes.size) :
    ∃ members, heap'.classAt id = { heap.classAt id with members } ∧
      (heap.isBuilt id = false → members = (heap.classAt id).members) := by
  induction h with
  | refl => exact ⟨_, rfl, fun _ => rfl⟩
  | @tail heap₁ heap₂ before change ih =>
    obtain ⟨members, here, declared⟩ := ih
    rcases change.classAt (Nat.lt_of_lt_of_le hid (sizeLE before).classes) with
      same | ⟨built, name, a, more⟩
    · exact ⟨members, same.trans here, declared⟩
    · refine ⟨members.insert name a, by rw [more, here], fun h => ?_⟩
      -- a declared class was declared all along, so nothing is stored on it
      have same : heap₁.isBuilt id = heap.isBuilt id := by rw [Heap.isBuilt, here]; rfl
      rw [← same, built] at h
      cases h

/-- A class keeps its body. -/
theorem body_classAt (h : heap.Grows heap') {id : ClassId} (hid : id.index < heap.classes.size) :
    (heap'.classAt id).body = (heap.classAt id).body := by
  obtain ⟨members, same, -⟩ := h.classAt hid
  rw [same]

/-- An instance stays one of its class and keeps the values that its attributes hold. -/
theorem instanceAt (h : heap.Grows heap') {id : InstanceId}
    (hid : id.index < heap.instances.size) :
    (heap'.instanceAt id).cls = (heap.instanceAt id).cls ∧
      ∀ name v, (heap.instanceAt id).members.get? name = some v →
        ∃ w, (heap'.instanceAt id).members.get? name = some w ∧ w.Includes v := by
  induction h with
  | refl => exact ⟨rfl, fun _ v hv => ⟨v, hv, .refl v⟩⟩
  | @tail heap₁ heap₂ before change ih =>
    obtain ⟨cls, gathered⟩ := ih
    rcases change.instanceAt (Nat.lt_of_lt_of_le hid (sizeLE before).instances) with
      same | ⟨other, w, more⟩
    · rw [same]
      exact ⟨cls, gathered⟩
    · rw [more]
      refine ⟨cls, fun name v hv => ?_⟩
      obtain ⟨u, hu, huv⟩ := gathered name v hv
      obtain ⟨x, hx, hxu⟩ := get?_upsert_includes hu other w
      exact ⟨x, hx, hxu.trans huv⟩

end Grows

/-! ## Functions of frames and classes -/

/-- The interpreted functions among the members of a class, in their order. -/
def memberFunctions (heap : Heap) (info : ClassInfo) : List FunctionId :=
  (info.members.values.filterMap Value.asFunction?).filter heap.isInterpreted

/-- A class that is asked for by a call lists the interpreted functions among its members. -/
theorem typeCallClass?_functions {args : Args} {info : ClassInfo}
    (h : heap.typeCallClass? args = some info) : info.functions = heap.memberFunctions info := by
  simp only [typeCallClass?, bind, Option.bind_eq_some_iff] at h
  obtain ⟨operands, -, name, -, bases, -, members, -, h⟩ := h
  cases h
  rfl

/-- All frames have finished, and the functions that frames and classes list are interpreted. -/
structure Sound (heap : Heap) : Prop where
  frames : ∀ id : FrameId, id.index < heap.frames.size → (heap.frameAt id).Sound heap
  classes : ∀ cls : ClassId, ∀ id ∈ (heap.classAt cls).functions, heap.isInterpreted id = true

/-- A class lists interpreted functions when it is built. -/
theorem Builds.functions (sound : heap.Sound) {info : ClassInfo} (builds : heap.Builds info) :
    ∀ id ∈ info.functions, heap.isInterpreted id = true := by
  cases builds with
  | typeCall args asked =>
    rw [typeCallClass?_functions asked]
    exact fun id hid => (List.mem_filter.mp hid).2
  | classStatement plan id run => exact (sound.frames id run).functions

/-- The body of a class is that of the class before, or the one that it is built with. -/
theorem Change.body (h : heap.Change heap') (cls : ClassId) :
    (heap'.classAt cls).body = (heap.classAt cls).body ∨
      cls.index = heap.classes.size ∧ heap.Builds (heap'.classAt cls) := by
  by_cases known : cls.index < heap.classes.size
  · exact .inl (Grows.single h |>.body_classAt known)
  have absent := classAt_of_size_le (Nat.le_of_not_lt known)
  rw [absent]
  unfold Heap.classAt
  -- the class was not there, so it is the one that has been added, or is still missing
  rcases h.classes with same | ⟨info, builds, pushed⟩ | ⟨other, name, a, -, modified⟩
  · rw [same]
    exact .inl (congrArg ClassInfo.body absent)
  · rw [pushed, Array.getD_eq_getD_getElem?, Array.getElem?_push]
    split
    case isTrue last => exact .inr ⟨last, builds⟩
    case isFalse =>
      rw [Array.getElem?_eq_none (Nat.le_of_not_lt known)]
      exact .inl rfl
  · rw [modified, Array.getD_eq_getD_getElem?, Array.getElem?_modify,
      Array.getElem?_eq_none (Nat.le_of_not_lt known)]
    left
    split <;> rfl

theorem Change.sound (h : heap.Change heap') (sound : heap.Sound) : heap'.Sound := by
  have keeps {ids : List FunctionId} (hids : ∀ id ∈ ids, heap.isInterpreted id = true) :
      ∀ id ∈ ids, heap'.isInterpreted id = true :=
    fun id hid => (Grows.single h).isInterpreted (hids id hid)
  constructor
  · intro id hid
    unfold frameAt
    rcases h.frames with same | ⟨frame, new, pushed⟩
    · rw [same] at hid ⊢
      exact ⟨(sound.frames id hid).finished, keeps (sound.frames id hid).functions⟩
    · rw [pushed, Array.size_push] at hid
      rcases Nat.lt_succ_iff_lt_or_eq.mp hid with old | last
      · rw [pushed, getD_push old]
        exact ⟨(sound.frames id old).finished, keeps (sound.frames id old).functions⟩
      · rw [pushed, last]
        simpa using ⟨new.finished, keeps new.functions⟩
  · intro cls
    rcases h.body cls with same | ⟨-, builds⟩
    · have functions : (heap'.classAt cls).functions = (heap.classAt cls).functions := by
        rw [ClassInfo.functions, same, ClassInfo.functions]
      rw [functions]
      exact keeps (sound.classes cls)
    · exact keeps (builds.functions sound)

/-- A heap that has grown from the builtins lists interpreted functions only. -/
theorem Grows.sound (h : Builtins.heap.Grows heap) : heap.Sound := by
  induction h with
  | refl =>
    refine ⟨fun _ hid => absurd hid (Nat.not_lt_zero _), fun cls => ?_⟩
    have declared : ∀ info ∈ Builtins.heap.classes, info.functions = [] := by
      intro info hinfo
      simp only [Builtins.heap, List.mem_toArray, List.mem_map] at hinfo
      obtain ⟨entry, -, rfl⟩ := hinfo
      rfl
    have none : (Builtins.heap.classAt cls).functions = [] := by
      rw [Heap.classAt, Array.getD_eq_getD_getElem?]
      cases found : Builtins.heap.classes[cls.index]? with
      | none => rfl
      | some info => exact declared info (Array.mem_of_getElem? found)
    simp [none]
  | tail _ change ih => exact change.sound ih

end Heap

end StubInference
