import StubInference.Proofs.Run.Filling
import StubInference.Proofs.Run.Growth

/-!
# Attributes that are stored and read

A store through a variable goes to its values one after the other. It reaches the instances and the
built classes that the variable holds by itself, each once, and nothing else. A read asks every value.
It gives what they answer, and any for a value that lacks the attribute, which is reported. A union is
asked as a whole: it answers for its members that have the attribute.

## Main definitions

* `Heap.object?`, `Heap.stored` — what an instance or a class holds, and what a store makes of it
* `Value.answers`, `Variable.lacking` — what reading an attribute gives and what it reports
* `Heap.AttributesHold` — every attribute of an instance holds some value

## Main results

* `Heap.object?_setAttribute_of_mem`, `Heap.object?_setAttribute_of_not_mem` — what a store reaches
* `FrameStep.loadAttribute_eq` — what a read gives and reports
* `attribute?_union_eq_none_iff`, `answers_union` — what a union answers
-/

namespace StubInference

/-! ## Stores -/

/-- A value with an entry of its own in the heap that takes attributes. -/
def Value.IsObject : Value → Prop
  | .instanceObject _ | .classObject _ => True
  | _ => False

namespace Value.IsObject

variable {a : Value}

theorem same_self (h : a.IsObject) : a.same a = true := by
  cases a <;> first | exact beq_self_eq_true _ | cases h

theorem members (h : a.IsObject) : a.members = [a] := by
  cases a <;> first | rfl | cases h

end Value.IsObject

/-- The instance or the class that a value is, with all that it holds. -/
def Heap.object? (heap : Heap) : Value → Option (InstanceInfo ⊕ ClassInfo)
  | .instanceObject id => heap.instances[id.index]?.map .inl
  | .classObject cls => heap.classes[cls.index]?.map .inr
  | _ => none

/-- What a store makes of an instance or a class. -/
def Heap.stored (name : String) (v : Variable) : InstanceInfo ⊕ ClassInfo → InstanceInfo ⊕ ClassInfo
  | .inl inst => .inl { inst with members := inst.members.upsert name v (·.mergeWith v) }
  | .inr info =>
    .inr (if info.isBuilt then { info with members := info.members.insert name v.joined } else info)

namespace Heap

variable {heap heap' : Heap} {name : String} {v object : Variable} {a b : Value}

theorem object?_eq_none (h : ¬ a.IsObject) : heap.object? a = none := by
  cases a <;> first | rfl | exact absurd trivial h

theorem ext_of_objects (entries : ∀ a, heap.object? a = heap'.object? a)
    (beside : (heap.functions, heap.frames, heap.scopes) =
      (heap'.functions, heap'.frames, heap'.scopes)) : heap = heap' := by
  have classes : heap.classes = heap'.classes := by
    refine Array.ext_getElem? fun i => ?_
    exact Option.map_injective (fun _ _ => Sum.inr.inj) (entries (.classObject ⟨i⟩))
  have instances : heap.instances = heap'.instances := by
    refine Array.ext_getElem? fun i => ?_
    exact Option.map_injective (fun _ _ => Sum.inl.inj) (entries (.instanceObject ⟨i⟩))
  cases heap
  cases heap'
  simp_all

theorem object?_setAttributeOn_self :
    (heap.setAttributeOn name v a).object? a = (heap.object? a).map (stored name v) := by
  cases a with
  | instanceObject id =>
    simp only [object?, setAttributeOn, modifyInstance, Array.getElem?_modify, if_pos, Option.map_map]
    rfl
  | classObject cls =>
    cases known : heap.classes[cls.index]? with
    | none =>
      have unbuilt : heap.isBuilt cls ≠ true := fun built => by
        rw [Array.getElem?_eq_getElem (lt_of_isBuilt built)] at known
        cases known
      simp [object?, setAttributeOn, unbuilt, known]
    | some info =>
      have here : heap.classAt cls = info := by
        rw [classAt, Array.getD_eq_getD_getElem?, known]
        rfl
      by_cases built : info.isBuilt = true
      · simp [object?, setAttributeOn, isBuilt, here, built, modifyClass, Array.getElem?_modify, known, stored]
      · simp [object?, setAttributeOn, isBuilt, here, built, known, stored]
  | _ => rfl

theorem object?_setAttributeOn_of_ne (other : a ≠ b) :
    (heap.setAttributeOn name v a).object? b = heap.object? b := by
  rcases setAttributeOn_eq heap name v a with h | ⟨id, rfl, h⟩ | ⟨cls, rfl, -, h⟩ <;> rw [h]
  · cases b with
    | instanceObject id' =>
      have apart : id.index ≠ id'.index := fun same => other (by cases id; cases id'; simp_all)
      simp only [object?, modifyInstance, Array.getElem?_modify, if_neg apart]
    | _ => rfl
  · cases b with
    | classObject cls' =>
      have apart : cls.index ≠ cls'.index := fun same => other (by cases cls; cases cls'; simp_all)
      simp only [object?, modifyClass, Array.getElem?_modify, if_neg apart]
    | _ => rfl

section Targets

variable {targets : List Value}

/-- A store on several values leaves the others as they are. -/
theorem object?_foldl_of_not_mem (h : a ∉ targets) :
    (targets.foldl (fun heap target => heap.setAttributeOn name v target) heap).object? a =
      heap.object? a := by
  induction targets generalizing heap with
  | nil => rfl
  | cons target rest ih =>
    rw [List.mem_cons, not_or] at h
    rw [List.foldl_cons, ih h.2, object?_setAttributeOn_of_ne (Ne.symm h.1)]

/-- A store on several values reaches each of them once. -/
theorem object?_foldl_of_mem (distinct : targets.Pairwise fun a b => a.same b = false)
    (h : a ∈ targets) :
    (targets.foldl (fun heap target => heap.setAttributeOn name v target) heap).object? a =
      (heap.object? a).map (stored name v) := by
  by_cases object : a.IsObject
  case neg => rw [object?_eq_none object, object?_eq_none object, Option.map_none]
  induction targets generalizing heap with
  | nil => cases h
  | cons target rest ih =>
    obtain ⟨first, others⟩ := List.pairwise_cons.mp distinct
    rw [List.foldl_cons]
    by_cases here : a = target
    · subst here
      have once : a ∉ rest := fun again => by
        have unlike := first a again
        rw [object.same_self] at unlike
        cases unlike
      rw [object?_foldl_of_not_mem once, object?_setAttributeOn_self]
    · rw [ih others (List.mem_of_ne_of_mem here h), object?_setAttributeOn_of_ne (Ne.symm here)]

end Targets

/-- A store on a variable leaves out what the variable does not hold by itself. -/
theorem object?_setAttribute_of_not_mem (h : a ∉ object.values) :
    (heap.setAttribute object name v).object? a = heap.object? a := object?_foldl_of_not_mem h

/-- A store on a variable reaches all that the variable holds by itself. -/
theorem object?_setAttribute_of_mem
    (distinct : object.values.Pairwise fun a b => a.same b = false) (h : a ∈ object.values) :
    (heap.setAttribute object name v).object? a = (heap.object? a).map (stored name v) :=
  object?_foldl_of_mem distinct h

/-- A store changes nothing but instances and classes. -/
theorem setAttribute_beside (heap : Heap) (object : Variable) :
    ((heap.setAttribute object name v).functions, (heap.setAttribute object name v).frames,
      (heap.setAttribute object name v).scopes) = (heap.functions, heap.frames, heap.scopes) := by
  refine setAttribute_keeps (fun heap => (heap.functions, heap.frames, heap.scopes))
    (fun heap a => ?_) heap object
  rcases setAttributeOn_eq heap name v a with h | ⟨id, -, h⟩ | ⟨cls, -, -, h⟩ <;> rw [h] <;> rfl

end Heap

/-! ## Reads -/

/-- The values that reading an attribute of a value gives: any where the value lacks it. -/
def Value.answers (heap : Heap) (name : String) (a : Value) : List Value :=
  match a.attribute? heap name with
  | some w => w.values
  | none => [.any]

theorem Value.answers_of_some {heap : Heap} {name : String} {a : Value} {w : Variable}
    (found : a.attribute? heap name = some w) : a.answers heap name = w.values := by
  rw [answers, found]

theorem Value.answers_of_none {heap : Heap} {name : String} {a : Value}
    (lacks : a.attribute? heap name = none) : a.answers heap name = [.any] := by
  rw [answers, lacks]

/-- The values of a variable that lack an attribute. -/
def Variable.lacking (heap : Heap) (name : String) (v : Variable) : List Value :=
  v.values.filter fun a => (a.attribute? heap name).isNone

/-- What is reported of a value that lacks an attribute. -/
def Value.missing (heap : Heap) (name : String) (a : Value) : FindingKind :=
  .attributeError (a.describe heap) name

/-- Whether this has been reported at the current position. -/
def Execution.Reported (s : Execution) (kind : FindingKind) : Prop :=
  ⟨kind, s.context.position⟩ ∈ s.context.log

/-- The state once all of these have been reported at the current position. -/
def Execution.reporting (s : Execution) (kinds : List FindingKind) : Execution :=
  ⟨s.frame, { s.context with
    log := kinds.foldl (fun log kind => log.record ⟨kind, s.context.position⟩) s.context.log }⟩

/-- The state once every value of a variable that lacks an attribute has been reported. -/
def Execution.reportingLacking (s : Execution) (name : String) (v : Variable) : Execution :=
  s.reporting ((v.lacking s.context.heap name).map (Value.missing s.context.heap name))

theorem Log.mem_record {log : Log} {finding other : Finding} :
    finding ∈ log.record other ↔ finding ∈ log ∨ finding = other := by
  unfold record
  split
  case isTrue known =>
    constructor
    · exact .inl
    · rintro (h | rfl)
      exacts [h, known]
  case isFalse => simp

theorem Execution.mem_log_reporting {s : Execution} {kinds : List FindingKind} {finding : Finding} :
    finding ∈ (s.reporting kinds).context.log ↔
      finding ∈ s.context.log ∨ ∃ kind ∈ kinds, finding = ⟨kind, s.context.position⟩ := by
  unfold reporting
  dsimp only
  generalize s.context.log = log
  induction kinds generalizing log with
  | nil => simp
  | cons kind rest ih =>
    rw [List.foldl_cons, ih, Log.mem_record]
    simp [or_assoc]

theorem Variable.mem_lacking {heap : Heap} {name : String} {v : Variable} {a : Value} :
    a ∈ v.lacking heap name ↔ a ∈ v.values ∧ a.attribute? heap name = none := by
  simp [lacking]

theorem Execution.mem_log_reportingLacking {s : Execution} {name : String} {v : Variable}
    {finding : Finding} : finding ∈ (s.reportingLacking name v).context.log ↔
      finding ∈ s.context.log ∨ ∃ a ∈ v.lacking s.context.heap name,
        finding = ⟨a.missing s.context.heap name, s.context.position⟩ := by
  simp [reportingLacking, mem_log_reporting]

namespace FrameStep

variable {s : Execution} {object : Variable} {name : String} {a : Value} {rest : List Value}

theorem load_cons_of_some {w : Variable} (found : a.attribute? s.context.heap name = some w) :
    loadAttribute.load name (a :: rest) s =
      (loadAttribute.load name rest >>= fun more => pure (w.values ++ more)) s := by
  have here : (get : FrameStep Execution) s = (.ok s, s) := rfl
  rw [loadAttribute.load, Step.bind_of_ok here]
  simp only [found, pure_bind]

theorem load_cons_of_none (lacks : a.attribute? s.context.heap name = none) :
    loadAttribute.load name (a :: rest) s =
      (loadAttribute.load name rest >>= fun more => pure ([.any] ++ more))
        (s.reporting [a.missing s.context.heap name]) := by
  have here : (get : FrameStep Execution) s = (.ok s, s) := rfl
  have reported : analysis (Analysis.record (a.missing s.context.heap name)) s =
      (.ok (), s.reporting [a.missing s.context.heap name]) := rfl
  rw [loadAttribute.load, Step.bind_of_ok here]
  simp only [lacks]
  rw [← Value.missing, Step.bind_of_ok reported, pure_bind]

theorem load_eq (values : List Value) : loadAttribute.load name values s =
    (.ok (values.flatMap (Value.answers s.context.heap name)),
      s.reporting ((values.filter fun a => (a.attribute? s.context.heap name).isNone).map
        (Value.missing s.context.heap name))) := by
  induction values generalizing s with
  | nil => rfl
  | cons a rest ih =>
    let lacks : Value → Bool := fun a => (a.attribute? s.context.heap name).isNone
    rw [List.flatMap_cons]
    cases found : a.attribute? s.context.heap name with
    | some w =>
      have passed : (a :: rest).filter lacks = rest.filter lacks :=
        List.filter_cons_of_neg (by simp [lacks, found])
      rw [load_cons_of_some found, Step.bind_of_ok ih, passed, Value.answers_of_some found]
      rfl
    | none =>
      have reported : (a :: rest).filter lacks = a :: rest.filter lacks :=
        List.filter_cons_of_pos (by simp [lacks, found])
      rw [load_cons_of_none found, Step.bind_of_ok ih, reported, Value.answers_of_none found]
      rfl

/-- A read gives the values of the attribute, and any for each value that lacks it, which is reported.
It changes nothing else. -/
theorem loadAttribute_eq : loadAttribute object name s =
    (.ok (.ofValues (object.values.flatMap (Value.answers s.context.heap name))),
      s.reportingLacking name object) :=
  Step.bind_of_ok (load_eq object.values)

end FrameStep

/-! ## Attributes of a union -/

/-- Every attribute of an instance holds some value. -/
def Heap.AttributesHold (heap : Heap) : Prop :=
  ∀ id, (heap.instanceAt id).members.All fun w => w.values ≠ []

section Attributes

variable {heap : Heap} {name : String} {members : List Value} {a : Value} {w : Variable}

theorem Heap.Filled.attributesHold (filled : heap.Filled) : heap.AttributesHold :=
  fun id entry member => (filled.instances id entry member).inhabited

theorem Variable.ofValues_inhabited (as : List Value) : (Variable.ofValues as).values ≠ [] := by
  rw [Variable.values_ofValues]
  split
  · exact List.cons_ne_nil _ _
  · exact Value.addNew_ne_nil ‹_›

theorem Heap.instanceAttribute?_inhabited {cls : ClassId}
    (found : heap.instanceAttribute? cls a name = some w) : w.values ≠ [] := by
  unfold Heap.instanceAttribute? at found
  split at found
  · cases found
    exact List.cons_ne_nil _ _
  · cases found
    exact List.cons_ne_nil _ _
  · split_ifs at found <;> cases found <;> exact List.cons_ne_nil _ _

theorem Heap.classAttribute?_inhabited {cls : ClassId}
    (found : heap.classAttribute? cls name = some w) : w.values ≠ [] := by
  unfold Heap.classAttribute? at found
  split at found
  · cases found
    exact List.cons_ne_nil _ _
  · dsimp only at found
    split at found
    case h_1 v known =>
      cases found
      obtain ⟨metaclass, -, known⟩ := Option.bind_eq_some_iff.mp known
      exact Heap.instanceAttribute?_inhabited known
    case h_2 =>
      unfold Heap.implicitClassAttribute? at found
      split_ifs at found <;> cases found <;> exact List.cons_ne_nil _ _

/-- An attribute that is found has some value. -/
theorem Heap.AttributesHold.attribute? (hold : heap.AttributesHold)
    (found : a.attribute? heap name = some w) : w.values ≠ [] := by
  cases a with
  | null => cases found
  | union members =>
    rw [Value.attribute?] at found
    split at found
    · cases found
    · cases found
      exact Variable.ofValues_inhabited _
  | instanceObject id =>
    rw [Value.attribute?] at found
    split at found
    case h_1 v known =>
      cases found
      exact (hold id).get? known
    case h_2 => exact Heap.instanceAttribute?_inhabited found
  | frozen cls | literal l =>
    rw [Value.attribute?] at found
    exact Heap.instanceAttribute?_inhabited found
  | classObject cls =>
    rw [Value.attribute?] at found
    exact Heap.classAttribute?_inhabited found
  | _ =>
    rw [Value.attribute?] at found
    cases found
    exact List.cons_ne_nil _ _

theorem mem_attributeValues {b : Value} : b ∈ Value.attributeValues heap name members ↔
    ∃ a ∈ members, ∃ w, a.attribute? heap name = some w ∧ b ∈ w.values := by
  induction members with
  | nil => simp [Value.attributeValues]
  | cons a rest ih =>
    rw [Value.attributeValues, List.mem_append, ih]
    cases found : a.attribute? heap name <;> simp [found]

/-- A union lacks an attribute just where all its members do. -/
theorem attribute?_union_eq_none_iff (hold : heap.AttributesHold) :
    (Value.union members).attribute? heap name = none ↔
      ∀ a ∈ members, a.attribute? heap name = none := by
  rw [Value.attribute?]
  cases known : Value.attributeValues heap name members with
  | nil =>
    refine iff_of_true rfl fun a ha => Option.eq_none_iff_forall_ne_some.mpr fun w found => ?_
    obtain ⟨b, hb⟩ := List.exists_mem_of_ne_nil _ (hold.attribute? found)
    have all := mem_attributeValues.mpr ⟨a, ha, w, found, hb⟩
    rw [known] at all
    cases all
  | cons b rest =>
    refine iff_of_false nofun fun none => ?_
    obtain ⟨a, ha, w, found, -⟩ := mem_attributeValues.mp (known ▸ List.mem_cons_self (a := b))
    rw [none a ha] at found
    cases found

/-- A union that has an attribute gives the values of its members that have it. -/
theorem answers_union (found : (Value.union members).attribute? heap name = some w) :
    (Value.union members).answers heap name =
      Value.addNew [] (Value.attributeValues heap name members) := by
  rw [Value.answers_of_some found]
  rw [Value.attribute?] at found
  cases known : Value.attributeValues heap name members with
  | nil =>
    rw [known] at found
    cases found
  | cons b rest =>
    rw [known] at found
    cases found
    rw [Variable.values_ofValues, if_neg (List.cons_ne_nil _ _)]

end Attributes

end StubInference
