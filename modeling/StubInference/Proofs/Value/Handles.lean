import StubInference.TypeOf

/-!
# Handles

Values name objects of the heap by their positions, at any depth and in any container. A handle is
such a position together with the table that it belongs to. What is read from the heap to show a
value, in a message or as a type, is read at its handles.

## Main definitions

* `Handle`, `Heap.Has` — positions in the heap, and whether something stands there
* `Value.handles`, `Variable.handles` — the handles in values and variables
* `Heap.Knows` — everything that a value names is there

## Main results

* `Value.type_congr`, `Value.describe_congr` — a value shows the same in heaps that show its handles
  alike
-/

namespace StubInference

/-- A position in the heap. -/
inductive Handle where
  | cls (id : ClassId)
  | function (id : FunctionId)
  | object (id : InstanceId)
  | frame (id : FrameId)
  | scope (id : ScopeId)
  deriving DecidableEq

/-- Whether something stands at a position. -/
def Heap.Has (heap : Heap) : Handle → Prop
  | .cls id => id.index < heap.classes.size
  | .function id => id.index < heap.functions.size
  | .object id => id.index < heap.instances.size
  | .frame id => id.index < heap.frames.size
  | .scope id => id.index < heap.scopes.size

instance (heap : Heap) (handle : Handle) : Decidable (heap.Has handle) := by
  cases handle <;> exact Nat.decLt _ _

/-! ## Handles in values -/

mutual
/-- The handles in a value, at any depth. -/
def Value.handles : Value → List Handle
  | .any | .null | .literal _ => []
  | .union members => Value.handlesOfAll members
  | .classObject id => [.cls id]
  | .function id => [.function id]
  | .bound receiver id => .function id :: receiver.handles
  | .instanceObject id => [.object id]
  | .frozen cls => [.cls cls]
  | .tuple elements | .list elements | .argTuple elements => Variable.handlesOfContents elements
  | .dict entries => Variable.handlesOfEntries entries
  | .argDict entries => Variable.handlesOfNames entries

/-- The handles in several values. -/
def Value.handlesOfAll : List Value → List Handle
  | [] => []
  | a :: as => a.handles ++ Value.handlesOfAll as

/-- The handles in a variable. -/
def Variable.handles : Variable → List Handle
  | .ofBindings bindings => Variable.handlesOfBindings bindings

/-- The handles in bindings. -/
def Variable.handlesOfBindings : List (Binding Value) → List Handle
  | [] => []
  | ⟨a, _⟩ :: rest => a.handles ++ Variable.handlesOfBindings rest

/-- The handles in several variables. -/
def Variable.handlesOfAll : List Variable → List Handle
  | [] => []
  | v :: vs => v.handles ++ Variable.handlesOfAll vs

/-- The handles in elements, where they are known. -/
def Variable.handlesOfContents : Option (List Variable) → List Handle
  | none => []
  | some vs => Variable.handlesOfAll vs

/-- The handles in pairs of keys and values. -/
def Variable.handlesOfPairs : List (Variable × Variable) → List Handle
  | [] => []
  | (k, v) :: rest => k.handles ++ (v.handles ++ Variable.handlesOfPairs rest)

/-- The handles in entries, where they are known. -/
def Variable.handlesOfEntries : Option (List (Variable × Variable)) → List Handle
  | none => []
  | some es => Variable.handlesOfPairs es

/-- The handles in named variables. -/
def Variable.handlesOfNamed : List (String × Variable) → List Handle
  | [] => []
  | (_, v) :: rest => v.handles ++ Variable.handlesOfNamed rest

/-- The handles in keyword arguments, where they are known. -/
def Variable.handlesOfNames : Option (List (String × Variable)) → List Handle
  | none => []
  | some es => Variable.handlesOfNamed es
end

/-- Everything that a value names is there, and so are the classes of the instances that it names. -/
structure Heap.Knows (heap : Heap) (a : Value) : Prop where
  here : ∀ h ∈ a.handles, heap.Has h
  classes : ∀ id, Handle.object id ∈ a.handles → heap.Has (.cls (heap.instanceAt id).cls)

/-! ## What a value shows -/

/-- The name under which an object shows, that of its class for an instance. -/
def Heap.shown (heap : Heap) : Handle → String
  | .cls id => (heap.classAt id).fullName
  | .function id => (heap.functionAt id).fullName
  | .object id => (heap.classAt (heap.instanceAt id).cls).fullName
  | .frame _ | .scope _ => ""

/-- Two heaps show the objects at given handles under the same names. -/
def Heap.ShowsAlike (heap heap' : Heap) (handles : List Handle) : Prop :=
  ∀ h ∈ handles, heap'.shown h = heap.shown h

variable {heap heap' : Heap} {xs ys : List Handle}

@[simp] theorem Heap.showsAlike_append : heap.ShowsAlike heap' (xs ++ ys) ↔
    heap.ShowsAlike heap' xs ∧ heap.ShowsAlike heap' ys := List.forall_mem_append

@[simp] theorem Heap.showsAlike_cons {x : Handle} : heap.ShowsAlike heap' (x :: ys) ↔
    heap'.shown x = heap.shown x ∧ heap.ShowsAlike heap' ys := List.forall_mem_cons

mutual
/-- A value has the same text in messages where its handles show alike. -/
theorem Value.describe_congr : ∀ a : Value, heap.ShowsAlike heap' a.handles →
    a.describe heap' = a.describe heap
  | .any | .null | .literal _ | .tuple _ | .list _ | .dict _ | .argTuple _ | .argDict _ => by
    simp [Value.describe]
  | .union members => fun h => by
    rw [Value.describe, Value.describe, describeAll_congr members h]
  | .classObject _ | .function _ | .bound _ _ | .instanceObject _ | .frozen _ => by
    simp +contextual [Value.describe, Value.handles, Heap.shown]

theorem Value.describeAll_congr : ∀ as : List Value,
    heap.ShowsAlike heap' (Value.handlesOfAll as) →
    Value.describeAll heap' as = Value.describeAll heap as
  | [] => fun _ => rfl
  | a :: as => fun h => by
    rw [Value.handlesOfAll, Heap.showsAlike_append] at h
    rw [Value.describeAll, Value.describeAll, describe_congr a h.1, describeAll_congr as h.2]
end

mutual
/-- A value has the same type where its handles show alike. -/
theorem Value.type_congr : ∀ a : Value, heap.ShowsAlike heap' a.handles →
    a.type heap' = a.type heap
  | .any | .null | .literal _ | .function _ | .bound _ _ | .argTuple _ | .argDict _
  | .tuple none | .list none | .dict none | .tuple (some []) | .list (some []) | .dict (some []) => by
    simp [Value.type]
  | .union members => fun h => by rw [Value.type, Value.type, Value.types_congr members h]
  | .classObject _ | .instanceObject _ | .frozen _ => by
    simp +contextual [Value.type, Value.handles, Heap.classType, Heap.shown]
  | .tuple (some (v :: vs)) | .list (some (v :: vs)) => fun h => by
    rw [Value.handles, Variable.handlesOfContents, Variable.handlesOfAll,
      Heap.showsAlike_append] at h
    rw [Value.type, Value.type, Variable.type_congr v h.1, Variable.types_congr vs h.2]
  | .dict (some ((k, v) :: es)) => fun h => by
    rw [Value.handles, Variable.handlesOfEntries, Variable.handlesOfPairs, Heap.showsAlike_append,
      Heap.showsAlike_append] at h
    obtain ⟨key, value, rest⟩ := h
    rw [Value.type, Value.type, Variable.type_congr k key, Variable.type_congr v value,
      Variable.keyTypes_congr es rest, Variable.valueTypes_congr es rest]

theorem Value.types_congr : ∀ as : List Value, heap.ShowsAlike heap' (Value.handlesOfAll as) →
    Value.types heap' as = Value.types heap as
  | [] => fun _ => rfl
  | a :: as => fun h => by
    rw [Value.handlesOfAll, Heap.showsAlike_append] at h
    rw [Value.types, Value.types, Value.type_congr a h.1, Value.types_congr as h.2]

theorem Variable.type_congr : ∀ v : Variable, heap.ShowsAlike heap' v.handles →
    v.type heap' = v.type heap
  | .ofBindings bindings => fun h => by
    rw [Variable.type, Variable.type, Variable.bindingTypes_congr bindings h]

theorem Variable.bindingTypes_congr : ∀ bs : List (Binding Value),
    heap.ShowsAlike heap' (Variable.handlesOfBindings bs) →
    Variable.bindingTypes heap' bs = Variable.bindingTypes heap bs
  | [] => fun _ => rfl
  | ⟨a, _⟩ :: bs => fun h => by
    rw [Variable.handlesOfBindings, Heap.showsAlike_append] at h
    rw [Variable.bindingTypes, Variable.bindingTypes, Value.type_congr a h.1,
      Variable.bindingTypes_congr bs h.2]

theorem Variable.types_congr : ∀ vs : List Variable,
    heap.ShowsAlike heap' (Variable.handlesOfAll vs) →
    Variable.types heap' vs = Variable.types heap vs
  | [] => fun _ => rfl
  | v :: vs => fun h => by
    rw [Variable.handlesOfAll, Heap.showsAlike_append] at h
    rw [Variable.types, Variable.types, Variable.type_congr v h.1,
      Variable.types_congr vs h.2]

theorem Variable.keyTypes_congr : ∀ es : List (Variable × Variable),
    heap.ShowsAlike heap' (Variable.handlesOfPairs es) →
    Variable.keyTypes heap' es = Variable.keyTypes heap es
  | [] => fun _ => rfl
  | (k, v) :: es => fun h => by
    rw [Variable.handlesOfPairs, Heap.showsAlike_append, Heap.showsAlike_append] at h
    rw [Variable.keyTypes, Variable.keyTypes, Variable.type_congr k h.1,
      Variable.keyTypes_congr es h.2.2]

theorem Variable.valueTypes_congr : ∀ es : List (Variable × Variable),
    heap.ShowsAlike heap' (Variable.handlesOfPairs es) →
    Variable.valueTypes heap' es = Variable.valueTypes heap es
  | [] => fun _ => rfl
  | (k, v) :: es => fun h => by
    rw [Variable.handlesOfPairs, Heap.showsAlike_append, Heap.showsAlike_append] at h
    rw [Variable.valueTypes, Variable.valueTypes, Variable.type_congr v h.2.1,
      Variable.valueTypes_congr es h.2.2]
end

end StubInference
